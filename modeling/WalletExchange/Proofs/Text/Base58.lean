import Mathlib.Data.Nat.Digits.Lemmas
import WalletExchange.Text.Base58

/-!
# Proofs — base 58 read back

A byte string is a list of digits in base 256, and its text is the list in base 58 of the same
number with the same zeros in front (`rebase`).  Going to another base and back loses nothing, so
the texts that can be read are the texts of bytes, and with the check behind the data it is the
same.  The characters in front are seen from the bytes in front, as far as the number that these
spell leaves no choice.

Main statements:

* `decode?_eq_some_iff`, `decodeChecked?_eq_some_iff` — what is read is what was written.
* `length_encode` — a byte takes one or two characters.
* `exists_heading` — what a text begins with whose bytes begin in a known way.
-/

namespace WalletExchange

namespace Bytes

/-- A byte string spells the number whose digits are its bytes, the last one first. -/
theorem toNat_eq_ofDigits (bytes : Bytes) :
    toNat bytes = Nat.ofDigits 256 (bytes.reverse.map UInt8.toNat) := by
  induction bytes using List.reverseRecOn with
  | nil => rfl
  | append_singleton bytes b ih =>
      rw [toNat, List.foldl_append, List.reverse_append, List.reverse_singleton,
        List.singleton_append, List.map_cons, Nat.ofDigits_cons, ← ih]
      exact Nat.add_comm _ _

theorem toNat_lt (bytes : Bytes) : toNat bytes < 256 ^ bytes.length := by
  have hlt := Nat.ofDigits_lt_base_pow_length (b := 256) (l := bytes.reverse.map UInt8.toNat)
    (by decide) fun x hx => by
      obtain ⟨b, -, rfl⟩ := List.mem_map.mp hx
      exact b.toNat_lt
  rwa [← toNat_eq_ofDigits, List.length_map, List.length_reverse] at hlt

theorem toNat_append (front back : Bytes) :
    toNat (front ++ back) = toNat front * 256 ^ back.length + toNat back := by
  induction back using List.reverseRecOn with
  | nil => simp
  | append_singleton back b ih =>
      rw [← List.append_assoc, toNat_append_singleton, ih, toNat_append_singleton,
        List.length_append, List.length_singleton]
      ring

end Bytes

namespace Base58

variable {base base' fuel n : Nat} {ds : List Nat} {bytes data : Bytes} {text : List Char}

/-! ### Digits -/

/-- Where the fuel suffices all digits are found. -/
theorem digits_eq (hbase : 1 < base) (h : n < base ^ fuel) :
    digits base fuel n = Nat.digits base n := by
  induction fuel generalizing n with
  | zero =>
      obtain rfl : n = 0 := by simpa using h
      simp [digits]
  | succ fuel ih =>
      by_cases hn : n = 0
      · simp [digits, hn]
      · have hdiv : n / base < base ^ fuel := by
          rw [Nat.div_lt_iff_lt_mul (by omega), ← Nat.pow_succ]
          exact h
        rw [digits, if_neg hn, ih hdiv, Nat.digits_def' hbase (Nat.pos_of_ne_zero hn)]

/-- The digits after the first `k` are those of the number without its last `k` places. -/
theorem drop_digits (hbase : 1 < base) (k : Nat) :
    (Nat.digits base n).drop k = Nat.digits base (n / base ^ k) := by
  induction k generalizing n with
  | zero => simp
  | succ k ih =>
      by_cases hn : n = 0
      · simp [hn]
      · rw [Nat.digits_def' hbase (Nat.pos_of_ne_zero hn), List.drop_succ_cons, ih,
          Nat.div_div_eq_div_mul, ← Nat.pow_succ']

/-- The digits of a number do not end in zero. -/
theorem head?_reverse_digits (base n : Nat) : ∀ d ∈ (Nat.digits base n).reverse.head?, d ≠ 0 := by
  rintro _ hhead rfl
  have hn : n ≠ 0 := by
    rintro rfl
    simp at hhead
  rw [List.head?_reverse, List.getLast?_eq_getLast_of_ne_nil (Nat.digits_ne_nil_iff_ne_zero.mpr hn)]
    at hhead
  exact Nat.getLast_digit_ne_zero base hn (Option.some.inj hhead)

/-! ### Digits in another base -/

/-- Digits in another base, the first one in front: the zeros in front stay, and the others are the
digits of the same number. -/
def rebase (base base' : Nat) (ds : List Nat) : List Nat :=
  List.replicate (ds.takeWhile (· == 0)).length 0 ++
    (Nat.digits base' (Nat.ofDigits base ds.reverse)).reverse

theorem rebase_zero_cons (base base' : Nat) (ds : List Nat) :
    rebase base base' (0 :: ds) = 0 :: rebase base base' ds := by
  have hreverse : (0 :: ds).reverse = ds.reverse ++ List.replicate 1 0 := List.reverse_cons
  rw [rebase, hreverse, Nat.ofDigits_append_replicate_zero, List.takeWhile_cons_of_pos rfl]
  rfl

theorem rebase_of_head (h : ∀ d ∈ ds.head?, d ≠ 0) :
    rebase base base' ds = (Nat.digits base' (Nat.ofDigits base ds.reverse)).reverse := by
  have hzeros : ds.takeWhile (· == 0) = [] := by
    cases ds with
    | nil => rfl
    | cons d ds => exact List.takeWhile_cons_of_neg (by simpa using h d rfl)
  rw [rebase, hzeros]
  rfl

theorem lt_of_mem_rebase (hbase : 1 < base') : ∀ d ∈ rebase base base' ds, d < base' := by
  intro d hd
  rcases List.mem_append.mp hd with hd | hd
  · rw [List.eq_of_mem_replicate hd]
    exact Nat.zero_lt_of_lt hbase
  · exact Nat.digits_lt_base hbase (List.mem_reverse.mp hd)

/-- In the same base they are the same digits. -/
theorem rebase_self (hbase : 1 < base) (h : ∀ d ∈ ds, d < base) : rebase base base ds = ds := by
  induction ds with
  | nil => simp [rebase]
  | cons d ds ih =>
      by_cases hd : d = 0
      · rw [hd, rebase_zero_cons, ih (List.forall_mem_cons.mp h).2]
      · have hdigits : Nat.digits base (Nat.ofDigits base (d :: ds).reverse) = (d :: ds).reverse :=
          Nat.digits_ofDigits base hbase _ (fun x hx => h x (List.mem_reverse.mp hx))
            fun _ => by simpa using hd
        rw [rebase_of_head (by rintro _ ⟨⟩; exact hd), hdigits, List.reverse_reverse]

/-- A base on the way makes no difference. -/
theorem rebase_rebase (base base' base'' : Nat) (ds : List Nat) :
    rebase base' base'' (rebase base base' ds) = rebase base base'' ds := by
  have hne {ds : List Nat} (h : ∀ d ∈ ds.head?, d ≠ 0) :
      rebase base' base'' (rebase base base' ds) = rebase base base'' ds := by
    rw [rebase_of_head h, rebase_of_head h, rebase_of_head (head?_reverse_digits base' _),
      List.reverse_reverse, Nat.ofDigits_digits]
  induction ds with
  | nil => exact hne nofun
  | cons d ds ih =>
      by_cases hd : d = 0
      · rw [hd, rebase_zero_cons, rebase_zero_cons, ih, rebase_zero_cons]
      · exact hne (by rintro _ ⟨⟩; exact hd)

theorem length_rebase_le (hbase : 1 < base) (hbase' : 1 < base') (hle : base ≤ base' ^ 2)
    (h : ∀ d ∈ ds, d < base) : (rebase base base' ds).length ≤ 2 * ds.length := by
  induction ds with
  | nil => simp [rebase]
  | cons d ds ih =>
      by_cases hd : d = 0
      · have hds := ih (List.forall_mem_cons.mp h).2
        rw [hd, rebase_zero_cons, List.length_cons, List.length_cons]
        omega
      · have hlt : Nat.ofDigits base (d :: ds).reverse < base' ^ (2 * (d :: ds).length) := by
          calc Nat.ofDigits base (d :: ds).reverse < base ^ (d :: ds).reverse.length :=
                Nat.ofDigits_lt_base_pow_length hbase fun x hx => h x (List.mem_reverse.mp hx)
            _ ≤ (base' ^ 2) ^ (d :: ds).length := by
                rw [List.length_reverse]
                exact Nat.pow_le_pow_left hle _
            _ = base' ^ (2 * (d :: ds).length) := (Nat.pow_mul base' 2 _).symm
        rw [rebase_of_head (by rintro _ ⟨⟩; exact hd), List.length_reverse]
        exact (Nat.digits_length_le_iff hbase' _).mpr hlt

theorem length_le_rebase (hbase : 1 < base') (hle : base' ≤ base) (h : ∀ d ∈ ds, d < base) :
    ds.length ≤ (rebase base base' ds).length := by
  induction ds with
  | nil => exact Nat.zero_le _
  | cons d ds ih =>
      by_cases hd : d = 0
      · rw [hd, rebase_zero_cons, List.length_cons, List.length_cons]
        exact Nat.succ_le_succ (ih (List.forall_mem_cons.mp h).2)
      · have hvalue : Nat.ofDigits base (d :: ds).reverse =
            Nat.ofDigits base ds.reverse + base ^ ds.length * d := by
          rw [List.reverse_cons, Nat.ofDigits_append, List.length_reverse, Nat.ofDigits_singleton]
        have hpow : base' ^ ds.length ≤ Nat.ofDigits base (d :: ds).reverse := by
          calc base' ^ ds.length ≤ base ^ ds.length := Nat.pow_le_pow_left hle _
            _ ≤ base ^ ds.length * d := Nat.le_mul_of_pos_right _ (Nat.pos_of_ne_zero hd)
            _ ≤ _ := by rw [hvalue]; exact Nat.le_add_left _ _
        rw [rebase_of_head (by rintro _ ⟨⟩; exact hd), List.length_reverse]
        exact (Nat.lt_digits_length_iff hbase _).mpr hpow

/-! ### Characters -/

/-- The character of a digit. -/
def symbol (d : Nat) : Char := alphabet.getD d '1'

/-- Each digit has a character of its own, which is a letter or a decimal digit. -/
theorem symbol_spec {d : Nat} (h : d < 58) :
    alphabet.idxOf? (symbol d) = some d ∧ (symbol d == '1') = (d == 0) ∧
      (symbol d).isAlphanum = true := by
  have hall : ∀ d ∈ List.range 58, alphabet.idxOf? (symbol d) = some d ∧
      (symbol d == '1') = (d == 0) ∧ (symbol d).isAlphanum = true := by decide +kernel
  exact hall d (List.mem_range.mpr h)

theorem symbol_of_idxOf? {c : Char} {d : Nat} (h : alphabet.idxOf? c = some d) :
    d < 58 ∧ symbol d = c := by
  obtain ⟨hlt, rfl, -⟩ := List.idxOf?_eq_some_iff.mp h
  exact ⟨hlt, by simp [symbol, List.getD, hlt]⟩

theorem length_takeWhile_map {α β : Type} {f : α → β} {p : β → Bool} {q : α → Bool} {xs : List α}
    (h : ∀ x ∈ xs, p (f x) = q x) :
    ((xs.map f).takeWhile p).length = (xs.takeWhile q).length := by
  induction xs with
  | nil => rfl
  | cons x xs ih =>
      obtain ⟨hx, hxs⟩ := List.forall_mem_cons.mp h
      rw [List.map_cons, List.takeWhile_cons, List.takeWhile_cons, hx]
      cases q x with
      | false => rfl
      | true => exact congrArg Nat.succ (ih hxs)

/-- The text of a byte string is its digits in base 58. -/
theorem encode_eq (bytes : Bytes) :
    encode bytes = (rebase 256 58 (bytes.map UInt8.toNat)).map symbol := by
  have hlt : bytes.toNat < 58 ^ (2 * bytes.length) := by
    calc bytes.toNat < 256 ^ bytes.length := bytes.toNat_lt
      _ ≤ (58 ^ 2) ^ bytes.length := Nat.pow_le_pow_left (by decide) _
      _ = 58 ^ (2 * bytes.length) := (Nat.pow_mul 58 2 bytes.length).symm
  have hzeros : ((bytes.map UInt8.toNat).takeWhile (· == 0)).length =
      (bytes.takeWhile (· == 0)).length :=
    length_takeWhile_map fun b _ => by rw [Bool.eq_iff_iff]; simp [← UInt8.toNat_inj]
  rw [encode, digits_eq (by decide) hlt, rebase, hzeros, ← List.map_reverse,
    ← Bytes.toNat_eq_ofDigits, List.map_append, List.map_replicate]
  rfl

theorem isAlphanum_of_mem_encode : ∀ c ∈ encode bytes, c.isAlphanum = true := by
  intro c hc
  rw [encode_eq] at hc
  obtain ⟨d, hd, rfl⟩ := List.mem_map.mp hc
  exact (symbol_spec (lt_of_mem_rebase (by decide) d hd)).2.2

theorem lt_of_mem_map_toNat : ∀ d ∈ bytes.map UInt8.toNat, d < 256 := by
  intro d hd
  obtain ⟨b, -, rfl⟩ := List.mem_map.mp hd
  exact b.toNat_lt

/-- A byte takes one or two characters. -/
theorem length_encode (bytes : Bytes) :
    bytes.length ≤ (encode bytes).length ∧ (encode bytes).length ≤ 2 * bytes.length := by
  have hlower : (bytes.map UInt8.toNat).length ≤ (rebase 256 58 (bytes.map UInt8.toNat)).length :=
    length_le_rebase (by decide) (by decide) lt_of_mem_map_toNat
  have hupper : (rebase 256 58 (bytes.map UInt8.toNat)).length ≤
      2 * (bytes.map UInt8.toNat).length :=
    length_rebase_le (by decide) (by decide) (by decide) lt_of_mem_map_toNat
  rw [List.length_map] at hlower hupper
  rw [encode_eq, List.length_map]
  exact ⟨hlower, hupper⟩

/-! ### Reading back -/

theorem value?_map_symbol (h : ∀ d ∈ ds, d < 58) :
    value? (ds.map symbol) = some (Nat.ofDigits 58 ds.reverse) := by
  induction ds using List.reverseRecOn with
  | nil => rfl
  | append_singleton ds d ih =>
      rw [List.forall_mem_append, List.forall_mem_singleton] at h
      have hds := ih h.1
      rw [value?] at hds ⊢
      rw [List.map_append, List.foldlM_append, hds]
      simp [(symbol_spec h.2).1, Nat.ofDigits_cons, Nat.add_comm]

/-- A text that spells a number is made of the characters of digits. -/
theorem exists_map_symbol (h : value? text = some n) :
    ∃ ds : List Nat, (∀ d ∈ ds, d < 58) ∧ ds.map symbol = text := by
  induction text using List.reverseRecOn generalizing n with
  | nil => exact ⟨[], List.forall_mem_nil _, rfl⟩
  | append_singleton text c ih =>
      rw [value?, List.foldlM_append, Option.bind_eq_bind, Option.bind_eq_some_iff] at h
      obtain ⟨front, hfront, hlast⟩ := h
      obtain ⟨ds, hds, rfl⟩ := ih hfront
      obtain ⟨d, hd, -⟩ : ∃ d, alphabet.idxOf? c = some d ∧ 58 * front + d = n := by
        simpa using hlast
      obtain ⟨hlt, rfl⟩ := symbol_of_idxOf? hd
      refine ⟨ds ++ [d], ?_, by simp⟩
      exact List.forall_mem_append.mpr ⟨hds, List.forall_mem_singleton.mpr hlt⟩

theorem decode?_map_symbol (h : ∀ d ∈ ds, d < 58) :
    decode? (ds.map symbol) = some ((rebase 58 256 ds).map UInt8.ofNat) := by
  have hzeros : ((ds.map symbol).takeWhile (· == '1')).length =
      (ds.takeWhile (· == 0)).length :=
    length_takeWhile_map (p := (· == '1')) fun d hd => (symbol_spec (h d hd)).2.1
  -- a digit stands for less than a byte, so there are not more bytes than digits
  have hfuel : Nat.ofDigits 58 ds.reverse < 256 ^ (ds.map symbol).length := by
    calc Nat.ofDigits 58 ds.reverse < 58 ^ ds.reverse.length :=
          Nat.ofDigits_lt_base_pow_length (by decide) fun x hx => h x (List.mem_reverse.mp hx)
      _ ≤ 256 ^ (ds.map symbol).length := by
          rw [List.length_reverse, List.length_map]
          exact Nat.pow_le_pow_left (by decide) _
  simp only [decode?, value?_map_symbol h, hzeros, digits_eq (by decide) hfuel,
    Option.bind_eq_bind, Option.bind_some]
  rw [rebase, List.map_append, List.map_replicate]
  rfl

/-- What is read is what was written. -/
theorem decode?_eq_some_iff : decode? text = some bytes ↔ encode bytes = text := by
  constructor
  · intro h
    obtain ⟨n, hn, -⟩ := Option.bind_eq_some_iff.mp h
    obtain ⟨ds, hds, rfl⟩ := exists_map_symbol hn
    rw [decode?_map_symbol hds] at h
    cases h
    have hbytes : ((rebase 58 256 ds).map UInt8.ofNat).map UInt8.toNat = rebase 58 256 ds := by
      rw [List.map_map, List.map_congr_left (g := id), List.map_id]
      intro d hd
      exact Nat.mod_eq_of_lt (lt_of_mem_rebase (by decide) d hd)
    rw [encode_eq, hbytes, rebase_rebase, rebase_self (by decide) hds]
  · rintro rfl
    have hid : UInt8.ofNat ∘ UInt8.toNat = id := funext fun b => UInt8.ofNat_toNat
    rw [encode_eq, decode?_map_symbol (lt_of_mem_rebase (by decide)), rebase_rebase,
      rebase_self (by decide) lt_of_mem_map_toNat, List.map_map, hid, List.map_id]

theorem length_check (data : Bytes) : (check data).length = 4 := by
  rw [check, List.length_take, Block.length_bytes]
  rfl

/-- With a check, too, what is read is what was written. -/
theorem decodeChecked?_eq_some_iff :
    decodeChecked? text = some data ↔ encodeChecked data = text := by
  constructor
  · intro h
    obtain ⟨bytes, hbytes, h⟩ := Option.bind_eq_some_iff.mp h
    obtain ⟨hcheck, hdata⟩ := Option.ite_none_right_eq_some.mp h
    cases hdata
    rw [encodeChecked, ← hcheck.2, List.take_append_drop]
    exact decode?_eq_some_iff.mp hbytes
  · rintro rfl
    have hlength : (data ++ check data).length = data.length + 4 := by
      rw [List.length_append, length_check]
    have hdecode := decode?_eq_some_iff.mpr (rfl : encode (data ++ check data) = _)
    simp only [decodeChecked?, encodeChecked, hdecode, Option.bind_eq_bind, Option.bind_some,
      hlength, Nat.add_sub_cancel, List.take_left, List.drop_left, Nat.le_add_left, and_self,
      if_true]

theorem decodeChecked?_encodeChecked (data : Bytes) :
    decodeChecked? (encodeChecked data) = some data :=
  decodeChecked?_eq_some_iff.mpr rfl

theorem length_le_encodeChecked (data : Bytes) :
    data.length + 4 ≤ (encodeChecked data).length := by
  have h := (length_encode (data ++ check data)).1
  rwa [List.length_append, length_check] at h

theorem length_encodeChecked_le (data : Bytes) :
    (encodeChecked data).length ≤ 2 * (data.length + 4) := by
  have h := (length_encode (data ++ check data)).2
  rwa [List.length_append, length_check] at h

/-! ### The first characters -/

theorem encode_zero_cons (bytes : Bytes) : encode (0 :: bytes) = '1' :: encode bytes := by
  rw [encode_eq, encode_eq, List.map_cons, UInt8.toNat_zero, rebase_zero_cons]
  rfl

/-- The characters of a number. -/
def characters (n : Nat) : List Char := (Nat.digits 58 n).reverse.map symbol

/-- The first characters are those of the number without its last places. -/
theorem exists_encode_eq (hbytes : ∀ b ∈ bytes.head?, b ≠ 0) (k : Nat) :
    ∃ rest, encode bytes = characters (bytes.toNat / 58 ^ k) ++ rest := by
  have hhead : ∀ d ∈ (bytes.map UInt8.toNat).head?, d ≠ 0 := by
    intro d hd
    rw [List.head?_map] at hd
    obtain ⟨b, hb, rfl⟩ := Option.map_eq_some_iff.mp hd
    exact fun hzero => hbytes b hb (UInt8.toNat_inj.mp hzero)
  refine ⟨((Nat.digits 58 bytes.toNat).take k).reverse.map symbol, ?_⟩
  rw [encode_eq, rebase_of_head hhead, ← List.map_reverse, ← Bytes.toNat_eq_ofDigits, characters,
    ← drop_digits (by decide), ← List.map_append, ← List.reverse_append, List.take_append_drop]

/-- Texts of data that begins in the same way begin with the characters of one of a few numbers, as
many as fit between the least and the greatest number that such bytes spell. -/
theorem exists_heading (headings : List String) (k low : Nat) {front tail : Bytes} {length : Nat}
    (hfront : front.headD 0 ≠ 0) (hlength : tail.length + 4 = length)
    (hlow : low * 58 ^ k ≤ front.toNat * 256 ^ length)
    (hhigh : (front.toNat + 1) * 256 ^ length ≤ (low + headings.length) * 58 ^ k)
    (hheadings : (List.range' low headings.length).map characters = headings.map String.toList) :
    ∃ heading ∈ headings, heading.toList <+: encodeChecked (front ++ tail) := by
  let back := tail ++ check (front ++ tail)
  have hback : back.toNat < 256 ^ length := by
    have h := back.toNat_lt
    rwa [List.length_append, length_check, hlength] at h
  have hvalue : (front ++ back).toNat = front.toNat * 256 ^ length + back.toNat := by
    rw [Bytes.toNat_append, List.length_append, length_check, hlength]
  have hmin : low ≤ (front ++ back).toNat / 58 ^ k := by
    rw [Nat.le_div_iff_mul_le (by positivity), hvalue]
    omega
  have hmax : (front ++ back).toNat / 58 ^ k < low + headings.length := by
    rw [Nat.div_lt_iff_lt_mul (by positivity), hvalue]
    rw [Nat.add_mul, Nat.one_mul] at hhigh
    omega
  have hmem : characters ((front ++ back).toNat / 58 ^ k) ∈ headings.map String.toList := by
    rw [← hheadings]
    exact List.mem_map_of_mem (List.mem_range'_1.mpr ⟨hmin, hmax⟩)
  obtain ⟨heading, hheading, heq⟩ := List.mem_map.mp hmem
  have hhead : ∀ b ∈ (front ++ back).head?, b ≠ 0 := by
    cases front with
    | nil => exact absurd rfl hfront
    | cons b front =>
        rintro _ ⟨⟩
        exact hfront
  obtain ⟨rest, hrest⟩ := exists_encode_eq hhead k
  exact ⟨heading, hheading, rest, by rw [heq, ← hrest, encodeChecked, List.append_assoc]⟩

end Base58

end WalletExchange
