import Mathlib.Data.List.Induction
import WalletExchange.Proofs.Descriptor.Register
import WalletExchange.Proofs.Text
import WalletExchange.Text.Bech32

/-!
# Proofs — bech32 read back

A byte string is written in symbols of five bits, with less than a symbol of zero bits to fill up
the last one.  Read back, the bits are the same, and the bytes in them are those that were written;
the zeros that are left over are too few to be another byte.

The six symbols of the check are what is missing to the remainder that a text of its kind leaves.
Moving a symbol into the register is linear, and six symbols fit into a register that is empty, so
they leave there what they spell.

Main statements:

* `toBytes?_ofBytes` — the bytes are read back from their symbols.
* `remainder_append_checkSymbols` — the check completes a text of its kind.
* `decode?_encode` — a head and data are read back from their text.
-/

namespace WalletExchange

/-! ### Pieces -/

section Chunks

variable {α β : Type} {size : Nat} {xs rest : List α}

theorem chunks_append {x : List α} (hsize : 0 < size) (hx : x.length = size) :
    chunks size (x ++ xs) = x :: chunks size xs := by
  have hlength : (x ++ xs).length / size = xs.length / size + 1 := by
    rw [List.length_append, hx, Nat.add_comm, Nat.add_div_right _ hsize]
  rw [chunks, hlength, List.range_succ_eq_map, List.map_cons, List.map_map, chunks]
  congr 1
  · rw [Nat.zero_mul, List.drop_zero, ← hx, List.take_left]
  · refine List.map_congr_left fun i _ => ?_
    rw [Function.comp_apply, Nat.succ_mul, Nat.add_comm, ← List.drop_drop, ← hx, List.drop_left]

theorem chunks_of_lt (h : xs.length < size) : chunks size xs = [] := by
  rw [chunks, Nat.div_eq_of_lt h]
  rfl

/-- Pieces of one length that were put together are found again, and a rest is dropped. -/
theorem chunks_flatMap {f : β → List α} (hsize : 0 < size) (hf : ∀ b, (f b).length = size)
    (bs : List β) (hrest : rest.length < size) : chunks size (bs.flatMap f ++ rest) = bs.map f := by
  induction bs with
  | nil => exact chunks_of_lt hrest
  | cons b bs ih =>
      rw [List.flatMap_cons, List.append_assoc, chunks_append hsize (hf b), ih, List.map_cons]

/-- A list whose length is a multiple is cut into pieces and nothing else. -/
theorem exists_chunks (hsize : 0 < size) (h : size ∣ xs.length) :
    (chunks size xs).flatten = xs ∧ ∀ x ∈ chunks size xs, x.length = size := by
  obtain ⟨count, hcount⟩ := h
  induction count generalizing xs with
  | zero =>
      obtain rfl : xs = [] := List.eq_nil_of_length_eq_zero hcount
      rw [chunks_of_lt hsize]
      exact ⟨rfl, List.forall_mem_nil _⟩
  | succ count ih =>
      rw [Nat.mul_succ] at hcount
      have hfirst : (xs.take size).length = size := by
        rw [List.length_take]
        omega
      obtain ⟨hflatten, hpieces⟩ := @ih (xs.drop size) (by rw [List.length_drop]; omega)
      have hchunks : chunks size xs = xs.take size :: chunks size (xs.drop size) := by
        rw [← chunks_append hsize hfirst, List.take_append_drop]
      rw [hchunks]
      refine ⟨?_, List.forall_mem_cons.mpr ⟨hfirst, hpieces⟩⟩
      rw [List.flatten_cons, hflatten, List.take_append_drop]

end Chunks

namespace Bech32

/-! ### Bits -/

variable {width n : Nat}

theorem length_bits (width n : Nat) : (bits width n).length = width := by simp [bits]

theorem bits_succ (width n : Nat) : bits (width + 1) n = bits width (n / 2) ++ [n.testBit 0] := by
  rw [bits, List.range_succ, List.map_append, List.map_singleton, bits]
  congr 1
  · refine List.map_congr_left fun i hi => ?_
    have hi : i < width := List.mem_range.mp hi
    rw [show width + 1 - 1 - i = width - 1 - i + 1 by omega, Nat.testBit_succ]
  · rw [Nat.add_sub_cancel, Nat.sub_self]

theorem ofBits_append_singleton (bs : List Bool) (b : Bool) :
    ofBits (bs ++ [b]) = 2 * ofBits bs + b.toNat := by
  simp [ofBits]

theorem ofBits_bits (h : n < 2 ^ width) : ofBits (bits width n) = n := by
  induction width generalizing n with
  | zero =>
      obtain rfl : n = 0 := by simpa using h
      rfl
  | succ width ih =>
      rw [Nat.pow_succ] at h
      rw [bits_succ, ofBits_append_singleton, ih (by omega), Nat.testBit_zero]
      rcases Nat.mod_two_eq_zero_or_one n with hn | hn <;> simp [hn] <;> omega

theorem ofBits_lt (bs : List Bool) : ofBits bs < 2 ^ bs.length := by
  induction bs using List.reverseRecOn with
  | nil => exact Nat.one_pos
  | append_singleton bs b ih =>
      have hb := b.toNat_le
      rw [ofBits_append_singleton, List.length_append, List.length_singleton, Nat.pow_succ]
      omega

theorem bits_ofBits (bs : List Bool) : bits bs.length (ofBits bs) = bs := by
  induction bs using List.reverseRecOn with
  | nil => rfl
  | append_singleton bs b ih =>
      have hb := b.toNat_le
      have hhalf : (2 * ofBits bs + b.toNat) / 2 = ofBits bs := by omega
      rw [ofBits_append_singleton, List.length_append, List.length_singleton, bits_succ, hhalf, ih,
        Nat.testBit_zero]
      cases b <;> simp

/-! ### Bytes -/

/-- The bits of a byte string. -/
def byteBits (bytes : Bytes) : List Bool := bytes.flatMap fun b => bits 8 b.toNat

theorem length_byteBits (bytes : Bytes) : (byteBits bytes).length = 8 * bytes.length := by
  induction bytes with
  | nil => rfl
  | cons b bytes ih =>
      rw [byteBits, List.flatMap_cons, List.length_append, length_bits, ← byteBits, ih,
        List.length_cons]
      omega

/-- The zeros that fill up the last symbol of a byte string. -/
def filling (bytes : Bytes) : List Bool :=
  List.replicate ((5 - (byteBits bytes).length % 5) % 5) false

theorem length_filling (bytes : Bytes) :
    (filling bytes).length < 5 ∧ 5 ∣ (byteBits bytes ++ filling bytes).length := by
  rw [List.length_append, filling, List.length_replicate]
  omega

theorem ofBytes_eq (bytes : Bytes) :
    ofBytes bytes = (chunks 5 (byteBits bytes ++ filling bytes)).map ofBits := rfl

/-- The symbols of a byte string have its bits, and zeros behind them. -/
theorem flatMap_bits_ofBytes (bytes : Bytes) :
    (ofBytes bytes).flatMap (bits 5) = byteBits bytes ++ filling bytes := by
  obtain ⟨hflatten, hpieces⟩ := exists_chunks (by decide) (length_filling bytes).2
  have hbits : ((chunks 5 (byteBits bytes ++ filling bytes)).map fun bs => bits 5 (ofBits bs)) =
      chunks 5 (byteBits bytes ++ filling bytes) := by
    rw [List.map_congr_left (g := id), List.map_id]
    intro bs hbs
    rw [← hpieces bs hbs, bits_ofBits]
    rfl
  rw [ofBytes_eq, List.flatMap_map, List.flatMap_def, hbits, hflatten]

theorem lt_of_mem_ofBytes (bytes : Bytes) : ∀ s ∈ ofBytes bytes, s < 32 := by
  intro s hs
  rw [ofBytes_eq] at hs
  obtain ⟨bs, hbs, rfl⟩ := List.mem_map.mp hs
  have hlt := ofBits_lt bs
  rwa [(exists_chunks (by decide) (length_filling bytes).2).2 bs hbs] at hlt

/-- The bytes are read back from their symbols. -/
theorem toBytes?_ofBytes (bytes : Bytes) : toBytes? (ofBytes bytes) = some bytes := by
  have hfilling := (length_filling bytes).1
  have hlength : (byteBits bytes ++ filling bytes).length / 8 * 8 = (byteBits bytes).length := by
    rw [List.length_append, length_byteBits]
    omega
  have hlt : (filling bytes).length < 8 := Nat.lt_trans hfilling (by decide)
  have hpieces : chunks 8 (byteBits bytes ++ filling bytes) =
      bytes.map fun b => bits 8 b.toNat := by
    refine chunks_flatMap (by decide) ?_ bytes hlt
    exact fun b => length_bits 8 _
  have hbytes : (chunks 8 (byteBits bytes ++ filling bytes)).map
      (fun bs => UInt8.ofNat (ofBits bs)) = bytes := by
    rw [hpieces, List.map_map, List.map_congr_left (g := id), List.map_id]
    intro b _
    rw [Function.comp_apply, ofBits_bits b.toNat_lt, UInt8.ofNat_toNat]
    rfl
  have hzeros : (filling bytes).all (· == false) = true := by simp [filling]
  rw [toBytes?, flatMap_bits_ofBytes, hlength, List.drop_left, hbytes]
  exact if_pos ⟨hfilling, hzeros⟩

/-! ### The check -/

variable {register symbol a b : Nat} {ss ts : List Nat} {kind : Kind} {head : List Char}
  {data : List Nat}

theorem step_eq_move : step = Checksum.move generators.zipIdx 25 := by
  funext register symbol
  rw [Checksum.move, ← Nat.and_two_pow_sub_one_eq_mod]
  rfl

theorem step_lt (register : Nat) (hsymbol : symbol < 32) : step register symbol < 2 ^ 30 := by
  rw [step_eq_move]
  exact Checksum.move_lt (by decide) register hsymbol

/-- While nothing leaves the register, a symbol is one more digit in base 32. -/
theorem step_of_lt (hregister : register < 2 ^ 25) (hsymbol : symbol < 32) :
    step register symbol = 32 * register + symbol := by
  have hlow : (register <<< 5 ^^^ symbol) % 2 ^ 5 = symbol := by
    rw [Nat.xor_mod_two_pow, Nat.shiftLeft_eq, Nat.mul_mod_left, Nat.zero_xor,
      Nat.mod_eq_of_lt hsymbol]
  have hhigh : (register <<< 5 ^^^ symbol) / 2 ^ 5 = register := by
    rw [← Nat.shiftRight_eq_div_pow, Nat.shiftRight_xor_distrib, Nat.shiftLeft_shiftRight,
      Nat.shiftRight_eq_div_pow, Nat.div_eq_of_lt hsymbol, Nat.xor_zero]
  rw [step_eq_move, Checksum.move_of_lt hregister, ← Nat.div_add_mod (register <<< 5 ^^^ symbol) 32]
  rw [show (32 : Nat) = 2 ^ 5 from rfl, hhigh, hlow]

/-- The digit of a number in base 32 that has `i` digits behind it. -/
def digit (r i : Nat) : Nat := (r >>> (5 * i)) &&& 31

theorem step_digit {r i : Nat} (h : r / 32 ^ (i + 1) < 2 ^ 25) :
    step (r / 32 ^ (i + 1)) (digit r i) = r / 32 ^ i := by
  have hdigit : digit r i = r / 32 ^ i % 32 := by
    rw [digit, show (31 : Nat) = 2 ^ 5 - 1 from rfl, Nat.and_two_pow_sub_one_eq_mod,
      Nat.shiftRight_eq_div_pow, Nat.pow_mul]
  rw [hdigit, step_of_lt h (Nat.mod_lt _ (by decide)), Nat.pow_succ, ← Nat.div_div_eq_div_mul,
    Nat.div_add_mod]

/-- Six digits leave in an empty register the number that they spell. -/
theorem foldl_step_digits {r : Nat} (hr : r < 2 ^ 30) :
    ((List.range 6).map fun i => digit r (5 - i)).foldl step 0 = r := by
  have hfront : r / 32 ^ 6 = 0 := Nat.div_eq_of_lt hr
  have hstep (i : Nat) : step (r / 32 ^ (i + 1)) (digit r i) = r / 32 ^ i := by
    have hle : 32 ≤ 32 ^ (i + 1) := Nat.le_self_pow (Nat.succ_ne_zero i) 32
    have hdiv : r / 32 ^ (i + 1) ≤ r / 32 := Nat.div_le_div_left hle (by decide)
    exact step_digit (by omega)
  calc ((List.range 6).map fun i => digit r (5 - i)).foldl step 0
      = step (step (step (step (step (step (r / 32 ^ 6) (digit r 5)) (digit r 4)) (digit r 3))
          (digit r 2)) (digit r 1)) (digit r 0) := by rw [hfront]; rfl
    _ = r / 32 ^ 0 := by rw [hstep 5, hstep 4, hstep 3, hstep 2, hstep 1, hstep 0]
    _ = r := Nat.div_one r

/-- The check completes a text of its kind. -/
theorem remainder_append_checkSymbols (kind : Kind) (head : List Char) (data : List Nat) :
    remainder (headSymbols head ++ (data ++ checkSymbols kind head data)) = kind.remainder := by
  let front := (headSymbols head ++ data).foldl step 1
  let blank := (List.replicate 6 0).foldl step front
  let r := blank ^^^ kind.remainder
  have hr : r < 2 ^ 30 := by
    refine Nat.xor_lt_two_pow (step_lt _ (by decide)) ?_
    cases kind <;> decide
  have hcheck : checkSymbols kind head data = (List.range 6).map fun i => digit r (5 - i) := by
    rw [checkSymbols, remainder, List.foldl_append]
    rfl
  have hzeros : (List.replicate 6 0).zipWith (· ^^^ ·) (checkSymbols kind head data) =
      checkSymbols kind head data := by
    simp [checkSymbols, List.range_succ, List.replicate]
  calc remainder (headSymbols head ++ (data ++ checkSymbols kind head data))
      = ((List.replicate 6 0).zipWith (· ^^^ ·) (checkSymbols kind head data)).foldl step
          (front ^^^ 0) := by
        rw [hzeros, Nat.xor_zero, ← List.append_assoc, remainder, List.foldl_append]
    _ = blank ^^^ (checkSymbols kind head data).foldl step 0 := by
        change _ = (List.replicate 6 0).foldl step front ^^^ _
        rw [step_eq_move, Checksum.foldl_move_xor]
        rw [hcheck, List.length_map, List.length_range, List.length_replicate]
    _ = blank ^^^ r := by rw [hcheck, foldl_step_digits hr]
    _ = kind.remainder := Nat.xor_xor_cancel_left _ _

/-! ### Characters -/

/-- The character of a symbol. -/
def character (s : Nat) : Char := alphabet.getD s 'q'

/-- Each symbol has a character of its own, which is a small letter or a digit and no one. -/
theorem character_spec {s : Nat} (h : s < 32) :
    alphabet.idxOf? (character s).toLower = some s ∧ character s ≠ '1' ∧
      (character s).isUpper = false ∧ (character s).isAlphanum = true := by
  have hall : ∀ s ∈ List.range 32, alphabet.idxOf? (character s).toLower = some s ∧
      character s ≠ '1' ∧ (character s).isUpper = false ∧ (character s).isAlphanum = true := by
    decide +kernel
  exact hall s (List.mem_range.mpr h)

theorem encode_eq (kind : Kind) (head : List Char) (data : List Nat) :
    encode kind head data = head ++ '1' :: (data ++ checkSymbols kind head data).map character :=
  rfl

theorem lt_of_mem_checkSymbols (kind : Kind) (head : List Char) (data : List Nat) :
    ∀ s ∈ checkSymbols kind head data, s < 32 := by
  intro s hs
  obtain ⟨i, -, rfl⟩ := List.mem_map.mp hs
  exact Nat.and_lt_two_pow _ (n := 5) (by decide)

theorem mapM_character (h : ∀ s ∈ ss, s < 32) :
    (ss.map character).mapM (fun c => alphabet.idxOf? c.toLower) = some ss := by
  induction ss with
  | nil => rfl
  | cons s ss ih =>
      obtain ⟨hs, hss⟩ := List.forall_mem_cons.mp h
      rw [List.map_cons, List.mapM_cons, (character_spec hs).1, ih hss]
      rfl

theorem toLower_of_isUpper {c : Char} (h : c.isUpper = false) : c.toLower = c :=
  dif_neg (of_decide_eq_false h)

theorem length_checkSymbols (kind : Kind) (head : List Char) (data : List Nat) :
    (checkSymbols kind head data).length = 6 := by
  rw [checkSymbols, List.length_map, List.length_range]

theorem lt_of_mem_symbols (kind : Kind) (head : List Char) (hdata : ∀ s ∈ data, s < 32) :
    ∀ s ∈ data ++ checkSymbols kind head data, s < 32 :=
  List.forall_mem_append.mpr ⟨hdata, lt_of_mem_checkSymbols kind head data⟩

/-- No symbol is written as a one, so a text is cut behind its head. -/
theorem splitLast?_encode (kind : Kind) (head : List Char) (hdata : ∀ s ∈ data, s < 32) :
    Text.splitLast? '1' (encode kind head data) =
      some (head, (data ++ checkSymbols kind head data).map character) := by
  refine Text.splitLast?_append fun hmem => ?_
  obtain ⟨s, hs, heq⟩ := List.mem_map.mp hmem
  exact (character_spec (lt_of_mem_symbols kind head hdata s hs)).2.1 heq

/-- The characters of a text are those of its head, the one, and letters and digits. -/
theorem isAlphanum_of_mem_encode (kind : Kind) (hhead : ∀ c ∈ head, c.isAlphanum = true)
    (hdata : ∀ s ∈ data, s < 32) : ∀ c ∈ encode kind head data, c.isAlphanum = true := by
  intro c hc
  rcases List.mem_append.mp hc with hc | hc
  · exact hhead c hc
  · rcases List.mem_cons.mp hc with rfl | hc
    · rfl
    · obtain ⟨s, hs, rfl⟩ := List.mem_map.mp hc
      exact (character_spec (lt_of_mem_symbols kind head hdata s hs)).2.2.2

/-- A head without capital letters and data are read back from their text. -/
theorem decode?_encode (kind : Kind) (hhead : ∀ c ∈ head, c.isUpper = false)
    (hdata : ∀ s ∈ data, s < 32) : decode? (encode kind head data) = some (head, data, kind) := by
  have hsymbols := lt_of_mem_symbols kind head hdata
  have hcase : (encode kind head data).any Char.isUpper = false := by
    rw [encode_eq, List.any_eq_false]
    intro c hc
    rw [Bool.not_eq_true]
    rcases List.mem_append.mp hc with hc | hc
    · exact hhead c hc
    · rcases List.mem_cons.mp hc with rfl | hc
      · rfl
      · obtain ⟨s, hs, rfl⟩ := List.mem_map.mp hc
        exact (character_spec (hsymbols s hs)).2.2.1
  have hlower : head.map Char.toLower = head := by
    rw [List.map_congr_left (g := id), List.map_id]
    intro c hc
    exact toLower_of_isUpper (hhead c hc)
  have hkind : [Kind.bech32, Kind.bech32m].find? (fun k =>
      remainder (headSymbols head ++ (data ++ checkSymbols kind head data)) == k.remainder) =
        some kind := by
    rw [remainder_append_checkSymbols]
    cases kind <;> rfl
  simp only [decode?, splitLast?_encode kind head hdata, Option.bind_eq_bind, Option.bind_some,
    hcase, Bool.and_false, hlower, mapM_character hsymbols, hkind]
  have htake : (data ++ checkSymbols kind head data).take
      ((data ++ checkSymbols kind head data).length - 6) = data := by
    rw [List.length_append, length_checkSymbols, Nat.add_sub_cancel, List.take_left]
  rw [htake, List.length_append, length_checkSymbols,
    if_neg (Nat.not_lt.mpr (Nat.le_add_left _ _))]
  rfl

end Bech32

end WalletExchange
