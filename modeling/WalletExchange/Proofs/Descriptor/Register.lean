import Mathlib.Data.Nat.Bitwise
import WalletExchange.Descriptor.Checksum

/-!
# Proofs — the register of checksums

The register holds eight symbols of five bits.  Moving a symbol in is linear over exclusive or, and
it loses nothing, since the five bits that leave the register are told apart by the low five bits of
what they add to it.  As long as nothing has left the register it holds the symbols themselves, so
eight symbols in a row that differ leave registers that differ, and whatever follows keeps them
apart.

Main statements:

* `step_xor` — moving a symbol in is linear.
* `step_injective` — a register can be told from the one after it and the symbol.
* `eq_of_foldl_step` — up to eight symbols can be told from the register before and after them.
-/

namespace WalletExchange.Checksum

/-- A register with the taps added that the bits of a number select. -/
def tap (taps : List (Nat × Nat)) (top register : Nat) : Nat :=
  taps.foldl (fun acc (g, i) => if top.testBit i then acc ^^^ g else acc) register

variable {taps : List (Nat × Nat)} {register symbol a b : Nat} {ss ts : List Nat}

theorem tap_cons (g i top register : Nat) (taps : List (Nat × Nat)) :
    tap ((g, i) :: taps) top register =
      tap taps top (if top.testBit i then register ^^^ g else register) := rfl

theorem tap_zero (taps : List (Nat × Nat)) (register : Nat) : tap taps 0 register = register := by
  induction taps with
  | nil => rfl
  | cons g taps ih => rw [tap_cons, Nat.zero_testBit, if_neg Bool.false_ne_true, ih]

theorem tap_xor (taps : List (Nat × Nat)) (s t a b : Nat) :
    tap taps (s ^^^ t) (a ^^^ b) = tap taps s a ^^^ tap taps t b := by
  induction taps generalizing a b with
  | nil => rfl
  | cons g taps ih =>
      obtain ⟨g, i⟩ := g
      rw [tap_cons, tap_cons, tap_cons, ← ih, Nat.testBit_xor]
      congr 1
      cases s.testBit i <;> cases t.testBit i
      · rfl
      · exact Nat.xor_assoc a b g
      · exact Nat.xor_right_comm a b g
      · -- a tap that both select cancels out
        change a ^^^ b = (a ^^^ g) ^^^ (b ^^^ g)
        rw [Nat.xor_right_comm, ← Nat.xor_assoc, Nat.xor_xor_cancel_right]

theorem tap_lt {n : Nat} (htaps : ∀ g ∈ taps, g.1 < 2 ^ n) (top : Nat)
    (hregister : register < 2 ^ n) : tap taps top register < 2 ^ n := by
  induction taps generalizing register with
  | nil => exact hregister
  | cons g taps ih =>
      obtain ⟨hg, htaps⟩ := List.forall_mem_cons.mp htaps
      rw [tap_cons]
      refine ih htaps ?_
      split
      · exact Nat.xor_lt_two_pow hregister hg
      · exact hregister

/-- A symbol of five bits moved into a register, with the taps for the bits that leave it. -/
def move (taps : List (Nat × Nat)) (width register symbol : Nat) : Nat :=
  tap taps (register >>> width) ((register % 2 ^ width) <<< 5 ^^^ symbol)

/-- Moving a symbol in is linear. -/
theorem move_xor (taps : List (Nat × Nat)) (width a b s t : Nat) :
    move taps width (a ^^^ b) (s ^^^ t) = move taps width a s ^^^ move taps width b t := by
  simp only [move, Nat.shiftRight_xor_distrib, Nat.xor_mod_two_pow, Nat.shiftLeft_xor_distrib,
    ← tap_xor]
  congr 1
  ac_rfl

/-- The register stays as wide as the taps are. -/
theorem move_lt {width : Nat} (htaps : ∀ g ∈ taps, g.1 < 2 ^ (width + 5)) (register : Nat)
    (hsymbol : symbol < 32) : move taps width register symbol < 2 ^ (width + 5) := by
  have hlow : register % 2 ^ width < 2 ^ width := Nat.mod_lt _ (Nat.two_pow_pos width)
  have hshifted : (register % 2 ^ width) <<< 5 < 2 ^ (width + 5) := by
    rw [Nat.shiftLeft_eq, Nat.pow_add]
    exact Nat.mul_lt_mul_of_pos_right hlow (by decide)
  refine tap_lt htaps _ (Nat.xor_lt_two_pow hshifted ?_)
  exact Nat.lt_of_lt_of_le hsymbol (Nat.pow_le_pow_right (n := 2) (by decide) (Nat.le_add_left 5 _))

/-- While nothing leaves the register there are no taps. -/
theorem move_of_lt {width : Nat} (hregister : register < 2 ^ width) (symbol : Nat) :
    move taps width register symbol = register <<< 5 ^^^ symbol := by
  rw [move, Nat.shiftRight_eq_div_pow, Nat.div_eq_of_lt hregister, tap_zero,
    Nat.mod_eq_of_lt hregister]

theorem foldl_move_xor (taps : List (Nat × Nat)) (width : Nat) (hlength : ss.length = ts.length)
    (a b : Nat) : (ss.zipWith (· ^^^ ·) ts).foldl (move taps width) (a ^^^ b) =
      ss.foldl (move taps width) a ^^^ ts.foldl (move taps width) b := by
  induction ss generalizing ts a b with
  | nil =>
      obtain rfl := List.eq_nil_of_length_eq_zero hlength.symm
      rfl
  | cons s ss ih =>
      obtain ⟨t, ts, rfl⟩ := List.exists_cons_of_length_eq_add_one hlength.symm
      rw [List.zipWith_cons_cons, List.foldl_cons, List.foldl_cons, List.foldl_cons, move_xor]
      exact ih (Nat.succ.inj hlength) _ _

theorem step_eq_move : step = move generators.zipIdx 35 := by
  funext register symbol
  rw [move, ← Nat.and_two_pow_sub_one_eq_mod]
  rfl

theorem step_xor (a b s t : Nat) : step (a ^^^ b) (s ^^^ t) = step a s ^^^ step b t := by
  rw [step_eq_move, move_xor]

theorem foldl_step_xor (hlength : ss.length = ts.length) (a b : Nat) :
    (ss.zipWith (· ^^^ ·) ts).foldl step (a ^^^ b) = ss.foldl step a ^^^ ts.foldl step b := by
  rw [step_eq_move, foldl_move_xor _ _ hlength]

/-- The register stays within its eight symbols. -/
theorem step_lt (register : Nat) (hsymbol : symbol < 32) : step register symbol < 2 ^ 40 := by
  rw [step_eq_move]
  exact move_lt (by decide) register hsymbol

theorem foldl_step_lt (hregister : register < 2 ^ 40) (hsymbols : ∀ s ∈ ss, s < 32) :
    ss.foldl step register < 2 ^ 40 := by
  induction ss generalizing register with
  | nil => exact hregister
  | cons s ss ih =>
      obtain ⟨hs, hss⟩ := List.forall_mem_cons.mp hsymbols
      exact ih (step_lt register hs) hss

/-! ### What comes back from a register -/

/-- What leaves the register can be told by the low five bits of what it adds. -/
theorem eq_zero_of_tap_mod {top : Nat} (htop : top < 32)
    (h : tap generators.zipIdx top 0 % 32 = 0) : top = 0 := by
  have hall : ∀ n ∈ List.range 32, tap generators.zipIdx n 0 % 32 = 0 → n = 0 := by decide
  exact hall top (List.mem_range.mpr htop) h

/-- Only an empty register is empty after a zero. -/
theorem eq_zero_of_step (hregister : register < 2 ^ 40) (h : step register 0 = 0) :
    register = 0 := by
  have hsplit : tap generators.zipIdx (register >>> 35) 0 = (register % 2 ^ 35) <<< 5 := by
    have hxor := tap_xor generators.zipIdx 0 (register >>> 35) ((register % 2 ^ 35) <<< 5) 0
    rw [Nat.zero_xor, Nat.xor_zero, tap_zero] at hxor
    rw [step_eq_move, move, Nat.xor_zero, hxor] at h
    exact (Nat.xor_eq_zero_iff.mp h).symm
  have htop : register >>> 35 = 0 := by
    refine eq_zero_of_tap_mod ?_ ?_
    · rw [Nat.shiftRight_eq_div_pow]
      omega
    · rw [hsplit, Nat.shiftLeft_eq, Nat.mul_mod_left]
  rw [htop, tap_zero, Nat.shiftLeft_eq] at hsplit
  rw [Nat.shiftRight_eq_div_pow] at htop
  omega

/-- A register can be told from the one after it and the symbol. -/
theorem step_injective (ha : a < 2 ^ 40) (hb : b < 2 ^ 40) (h : step a symbol = step b symbol) :
    a = b := by
  have hzero : step (a ^^^ b) 0 = 0 := by
    have hxor := step_xor a b symbol symbol
    rwa [h, Nat.xor_self, Nat.xor_self] at hxor
  exact Nat.xor_eq_zero_iff.mp (eq_zero_of_step (Nat.xor_lt_two_pow ha hb) hzero)

theorem foldl_step_injective (ha : a < 2 ^ 40) (hb : b < 2 ^ 40) (hsymbols : ∀ s ∈ ss, s < 32)
    (h : ss.foldl step a = ss.foldl step b) : a = b := by
  induction ss generalizing a b with
  | nil => exact h
  | cons s ss ih =>
      obtain ⟨hs, hss⟩ := List.forall_mem_cons.mp hsymbols
      exact step_injective ha hb (ih (step_lt a hs) (step_lt b hs) hss h)

/-- While nothing has left the register, it is empty only if all that came in is zero. -/
theorem eq_zero_of_foldl_step {k : Nat} (hregister : register < 2 ^ (5 * k))
    (hlength : k + ss.length ≤ 8) (hsymbols : ∀ s ∈ ss, s < 32)
    (h : ss.foldl step register = 0) : register = 0 ∧ ∀ s ∈ ss, s = 0 := by
  induction ss generalizing register k with
  | nil => exact ⟨h, List.forall_mem_nil _⟩
  | cons s ss ih =>
      obtain ⟨hs, hss⟩ := List.forall_mem_cons.mp hsymbols
      rw [List.length_cons] at hlength
      have hlow : register < 2 ^ 35 :=
        Nat.lt_of_lt_of_le hregister (Nat.pow_le_pow_right (by decide) (by omega))
      have hstep : step register s = register <<< 5 ^^^ s := by
        rw [step_eq_move, move_of_lt hlow]
      have hnext : step register s < 2 ^ (5 * (k + 1)) := by
        have hshifted : register <<< 5 < 2 ^ (5 * (k + 1)) := by
          rw [Nat.shiftLeft_eq, Nat.mul_add, Nat.pow_add]
          exact Nat.mul_lt_mul_of_pos_right hregister (by decide)
        have hsymbol : s < 2 ^ (5 * (k + 1)) :=
          Nat.lt_of_lt_of_le hs (Nat.pow_le_pow_right (n := 2) (i := 5) (by decide) (by omega))
        rw [hstep]
        exact Nat.xor_lt_two_pow hshifted hsymbol
      obtain ⟨hzero, hrest⟩ := ih hnext (by omega) hss h
      rw [hstep, Nat.xor_eq_zero_iff, Nat.shiftLeft_eq] at hzero
      exact ⟨by omega, List.forall_mem_cons.mpr ⟨by omega, hrest⟩⟩

/-- Up to eight symbols can be told from the register before and after them. -/
theorem eq_of_foldl_step (hlength : ss.length = ts.length) (hle : ss.length ≤ 8)
    (hss : ∀ s ∈ ss, s < 32) (hts : ∀ t ∈ ts, t < 32)
    (h : ss.foldl step register = ts.foldl step register) : ss = ts := by
  have hempty : (ss.zipWith (· ^^^ ·) ts).foldl step 0 = 0 := by
    have hxor := foldl_step_xor hlength register register
    rwa [h, Nat.xor_self, Nat.xor_self] at hxor
  have hsum : ∀ s ∈ ss.zipWith (· ^^^ ·) ts, s < 32 := by
    intro s hs
    obtain ⟨i, hi, rfl⟩ := List.mem_iff_getElem.mp hs
    rw [List.getElem_zipWith]
    exact Nat.xor_lt_two_pow (n := 5) (hss _ (List.getElem_mem _)) (hts _ (List.getElem_mem _))
  have hlength_sum : (ss.zipWith (· ^^^ ·) ts).length = ss.length := by
    rw [List.length_zipWith, ← hlength, Nat.min_self]
  obtain ⟨-, hzero⟩ := eq_zero_of_foldl_step (k := 0) Nat.one_pos (by omega) hsum hempty
  refine List.ext_getElem hlength fun i h₁ h₂ => Nat.xor_eq_zero_iff.mp (hzero _ ?_)
  rw [← List.getElem_zipWith (f := (· ^^^ ·)) (h := by omega)]
  exact List.getElem_mem _

end WalletExchange.Checksum
