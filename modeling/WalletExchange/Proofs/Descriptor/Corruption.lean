import Mathlib.Data.List.Basic
import WalletExchange.Proofs.Descriptor.Register
import WalletExchange.Proofs.Descriptor.Reprint

/-!
# Proofs — corrupted descriptors

Four characters in a row stand in two groups of three, and two groups make eight symbols, as many as
the register of checksums holds.  So two texts that differ in a window of four characters have
different checksums, at every length and wherever the window lies.

Main statements:

* `Checksum.eq_of_remainder` — the register at the end tells what stood in the window.
* `OutputDescriptor.corruption_detected` — a checksum is refused behind a text with such a
  difference.
-/

namespace WalletExchange

/-- The two lists have one length, and the same elements in all places but `width` in a row. -/
def SameOutside {α : Type} (width : Nat) (x y : List α) : Prop :=
  x.length = y.length ∧ ∃ start, ∀ i, i < start ∨ start + width ≤ i → x[i]? = y[i]?

namespace SameOutside

variable {α β : Type} {width : Nat} {x y : List α}

theorem map (f : α → β) (h : SameOutside width x y) : SameOutside width (x.map f) (y.map f) := by
  obtain ⟨hlength, start, hsame⟩ := h
  refine ⟨by simpa using hlength, start, fun i hi => ?_⟩
  rw [List.getElem?_map, List.getElem?_map, hsame i hi]

/-- A piece is replaced by another one of its length: a character, say, or two that are swapped. -/
theorem of_append {u v : List α} (before after : List α) (hlength : u.length = v.length)
    (hle : u.length ≤ width) :
    SameOutside width (before ++ (u ++ after)) (before ++ (v ++ after)) := by
  refine ⟨by simp [hlength], before.length, fun i hi => ?_⟩
  rcases hi with hbefore | hafter
  · rw [List.getElem?_append_left hbefore, List.getElem?_append_left hbefore]
  · rw [List.getElem?_append_right (by omega), List.getElem?_append_right (by omega),
      List.getElem?_append_right (by omega), List.getElem?_append_right (by omega), hlength]

/-- A window of four places lies in two groups of three. -/
theorem exists_groups (h : SameOutside 4 x y) :
    ∃ n, 3 ∣ n ∧ x.take n = y.take n ∧ x.drop (n + 6) = y.drop (n + 6) := by
  obtain ⟨-, start, hsame⟩ := h
  refine ⟨3 * (start / 3), Nat.dvd_mul_right _ _, ?_, ?_⟩
  · refine List.ext_getElem? fun i => ?_
    rw [List.getElem?_take, List.getElem?_take]
    split
    · exact hsame i (by omega)
    · rfl
  · refine List.ext_getElem? fun i => ?_
    rw [List.getElem?_drop, List.getElem?_drop]
    exact hsame _ (by omega)

end SameOutside

namespace Checksum

variable {ps qs : List Nat}

/-! ### Groups of three characters -/

theorem symbols_lt (h : ∀ p ∈ ps, p < 96) : ∀ s ∈ symbols ps, s < 32 := by
  induction ps using symbols.induct with
  | case1 a b c rest ih =>
      simp only [List.forall_mem_cons] at h
      obtain ⟨ha, hb, hc, hrest⟩ := h
      simp only [symbols, List.forall_mem_cons]
      exact ⟨by omega, by omega, by omega, by omega, ih hrest⟩
  | case2 a b =>
      simp only [List.forall_mem_cons] at h
      simp only [symbols, List.forall_mem_cons]
      exact ⟨by omega, by omega, by omega, List.forall_mem_nil _⟩
  | case3 a =>
      simp only [List.forall_mem_cons] at h
      simp only [symbols, List.forall_mem_cons]
      exact ⟨by omega, by omega, List.forall_mem_nil _⟩
  | case4 => exact List.forall_mem_nil _

/-- The symbols of a text and the zeros after them fit into five bits. -/
theorem lt_of_mem_padded (h : ∀ p ∈ ps, p < 96) :
    ∀ s ∈ symbols ps ++ List.replicate 8 0, s < 32 := by
  intro s hs
  rcases List.mem_append.mp hs with hs | hs
  · exact symbols_lt h s hs
  · rw [List.eq_of_mem_replicate hs]
    decide

theorem length_symbols (ps : List Nat) : (symbols ps).length = ps.length + (ps.length + 2) / 3 := by
  induction ps using symbols.induct with
  | case1 a b c rest ih =>
      simp only [symbols, List.length_cons, ih]
      omega
  | case2 | case3 | case4 => simp [symbols]

/-- Whole groups have their symbols by themselves. -/
theorem symbols_append (h : 3 ∣ ps.length ∨ qs = []) :
    symbols (ps ++ qs) = symbols ps ++ symbols qs := by
  rcases h with hgroups | rfl
  · induction ps using symbols.induct with
    | case1 a b c rest ih =>
        have hrest : 3 ∣ rest.length := by
          simp only [List.length_cons] at hgroups
          omega
        simp only [List.cons_append, symbols, ih hrest]
    | case2 | case3 => simp at hgroups
    | case4 => rfl
  · rw [List.append_nil, symbols, List.append_nil]

/-- The characters of a text can be told from its symbols. -/
theorem symbols_injective (hlength : ps.length = qs.length) (hps : ∀ p ∈ ps, p < 96)
    (hqs : ∀ q ∈ qs, q < 96) (h : symbols ps = symbols qs) : ps = qs := by
  induction ps using symbols.induct generalizing qs with
  | case1 a b c ps ih =>
      obtain ⟨a', b', c', qs, rfl⟩ : ∃ a' b' c' rest, qs = a' :: b' :: c' :: rest :=
        match qs, hlength with
        | a' :: b' :: c' :: rest, _ => ⟨a', b', c', rest, rfl⟩
      simp only [List.forall_mem_cons] at hps hqs
      simp only [symbols, List.cons.injEq] at h
      -- the fourth symbol has the three classes as its digits in base three
      have hrest : ps = qs := by
        refine ih ?_ hps.2.2.2 hqs.2.2.2 h.2.2.2.2
        simpa using hlength
      simp only [List.cons.injEq]
      exact ⟨by omega, by omega, by omega, hrest⟩
  | case2 a b =>
      obtain ⟨a', b', rfl⟩ : ∃ a' b', qs = [a', b'] :=
        match qs, hlength with
        | [a', b'], _ => ⟨a', b', rfl⟩
      simp only [List.forall_mem_cons] at hps hqs
      simp only [symbols, List.cons.injEq] at h
      simp only [List.cons.injEq]
      exact ⟨by omega, by omega, trivial⟩
  | case3 a =>
      obtain ⟨a', rfl⟩ := List.length_eq_one_iff.mp hlength.symm
      simp only [symbols, List.cons.injEq] at h
      simp only [List.cons.injEq]
      exact ⟨by omega, trivial⟩
  | case4 => exact (List.eq_nil_of_length_eq_zero hlength.symm).symm

theorem symbols_take_drop (ps : List Nat) {n : Nat} (h : 3 ∣ n) :
    symbols ps = symbols (ps.take n) ++ symbols (ps.drop n) := by
  rw [← symbols_append, List.take_append_drop]
  rcases Nat.le_total n ps.length with hle | hle
  · exact .inl (by rwa [List.length_take_of_le hle])
  · exact .inr (List.drop_eq_nil_of_le hle)

/-- The register after a text: after the whole groups in front, after two more, and at the end. -/
theorem foldl_symbols (rs tail : List Nat) (register : Nat) {n : Nat} (h : 3 ∣ n) :
    (symbols rs ++ tail).foldl step register =
      (symbols (rs.drop (n + 6)) ++ tail).foldl step
        ((symbols ((rs.drop n).take 6)).foldl step
          ((symbols (rs.take n)).foldl step register)) := by
  rw [symbols_take_drop rs h, symbols_take_drop (rs.drop n) (n := 6) (by decide), List.drop_drop,
    List.append_assoc, List.append_assoc, List.foldl_append, List.foldl_append]

/-- Texts that differ in a window of four characters leave registers that differ. -/
theorem eq_of_remainder (hwindow : SameOutside 4 ps qs) (hps : ∀ p ∈ ps, p < 96)
    (hqs : ∀ q ∈ qs, q < 96) (h : remainder ps = remainder qs) : ps = qs := by
  have hlength := hwindow.1
  obtain ⟨n, hn, hfront, hrest⟩ := hwindow.exists_groups
  have hgroups : ∀ {rs : List Nat}, (∀ r ∈ rs, r < 96) → ∀ r ∈ (rs.drop n).take 6, r < 96 :=
    fun hrs r hr => hrs r (List.drop_subset _ _ (List.take_subset _ _ hr))
  have hmiddle : ((ps.drop n).take 6).length = ((qs.drop n).take 6).length := by
    rw [List.length_take, List.length_take, List.length_drop, List.length_drop, hlength]
  have hstart : (symbols (qs.take n)).foldl step 1 < 2 ^ 40 :=
    foldl_step_lt (by decide) (symbols_lt fun q hq => hqs q (List.take_subset _ _ hq))
  have hend : ∀ q ∈ qs.drop (n + 6), q < 96 := fun q hq => hqs q (List.drop_subset _ _ hq)
  have hsymbols : symbols ((ps.drop n).take 6) = symbols ((qs.drop n).take 6) := by
    rw [remainder, remainder, Nat.xor_left_inj, foldl_symbols ps _ 1 hn, foldl_symbols qs _ 1 hn,
      hfront, hrest] at h
    refine eq_of_foldl_step ?_ ?_ (symbols_lt (hgroups hps)) (symbols_lt (hgroups hqs)) <|
      foldl_step_injective (foldl_step_lt hstart (symbols_lt (hgroups hps)))
        (foldl_step_lt hstart (symbols_lt (hgroups hqs))) (lt_of_mem_padded hend) h
    · rw [length_symbols, length_symbols, hmiddle]
    · rw [length_symbols, List.length_take]
      omega
  have heq := symbols_injective hmiddle (hgroups hps) (hgroups hqs) hsymbols
  rw [← List.take_append_drop n ps, ← List.take_append_drop n qs, hfront,
    ← List.take_append_drop 6 (ps.drop n), ← List.take_append_drop 6 (qs.drop n), heq,
    List.drop_drop, List.drop_drop, hrest]

/-! ### Characters -/

theorem character_injective {d e : Nat} (hd : d < 32) (he : e < 32)
    (h : outputAlphabet.getD d 'q' = outputAlphabet.getD e 'q') : d = e := by
  have hall : ∀ d ∈ List.range 32, ∀ e ∈ List.range 32,
      outputAlphabet.getD d 'q' = outputAlphabet.getD e 'q' → d = e := by decide +kernel
  exact hall d (List.mem_range.mpr hd) e (List.mem_range.mpr he) h

theorem eq_of_digits {n a b : Nat} (ha : a < 32 ^ n) (hb : b < 32 ^ n)
    (h : ∀ i < n, a / 32 ^ i % 32 = b / 32 ^ i % 32) : a = b := by
  induction n generalizing a b with
  | zero => rw [Nat.lt_one_iff.mp ha, Nat.lt_one_iff.mp hb]
  | succ n ih =>
      have hlow : a % 32 = b % 32 := by simpa using h 0 (Nat.succ_pos n)
      have hhigh : a / 32 = b / 32 := by
        rw [Nat.pow_succ] at ha hb
        refine ih (Nat.div_lt_of_lt_mul ?_) (Nat.div_lt_of_lt_mul ?_) fun i hi => ?_
        · rwa [Nat.mul_comm]
        · rwa [Nat.mul_comm]
        · rw [Nat.div_div_eq_div_mul, Nat.div_div_eq_div_mul, ← Nat.pow_add_one']
          exact h (i + 1) (Nat.succ_lt_succ hi)
      omega

/-- The register can be told from the checksum. -/
theorem render_injective {a b : Nat} (ha : a < 2 ^ 40) (hb : b < 2 ^ 40)
    (h : render a = render b) : a = b := by
  refine eq_of_digits (n := 8) ha hb fun i hi => ?_
  have hdigit : (a >>> (5 * i)) % 32 = (b >>> (5 * i)) % 32 := by
    -- the last character is the lowest digit
    have hcharacter := List.map_inj_left.mp h (7 - i) (List.mem_range.mpr (by omega))
    rw [Nat.sub_sub_self (Nat.le_of_lt_succ hi)] at hcharacter
    exact character_injective (Nat.mod_lt _ (by decide)) (Nat.mod_lt _ (by decide)) hcharacter
  rwa [Nat.shiftRight_eq_div_pow, Nat.shiftRight_eq_div_pow, Nat.pow_mul] at hdigit

theorem idxOf?_eq_some {c : Char} (h : c ∈ inputAlphabet) :
    inputAlphabet.idxOf? c = some (inputAlphabet.idxOf c) := by
  obtain ⟨i, hi⟩ := Option.isSome_iff_exists.mp (List.isSome_idxOf?.mpr h)
  rw [List.idxOf_eq_getD_idxOf?, hi, Option.getD_some]

theorem positions?_eq_some {text : List Char} (h : ∀ c ∈ text, c ∈ inputAlphabet) :
    positions? text = some (text.map fun c => inputAlphabet.idxOf c) := by
  induction text with
  | nil => rfl
  | cons c text ih =>
      obtain ⟨hc, htext⟩ := List.forall_mem_cons.mp h
      rw [positions?_cons, ih htext, idxOf?_eq_some hc, List.map_cons]
      rfl

theorem remainder_lt {ps : List Nat} (h : ∀ p ∈ ps, p < 96) : remainder ps < 2 ^ 40 :=
  Nat.xor_lt_two_pow (foldl_step_lt (by decide) (lt_of_mem_padded h)) (by decide)

/-- Texts that differ in a window of four characters have different checksums. -/
theorem ofText?_ne_of_window {x y : List Char} (hx : ∀ c ∈ x, c ∈ inputAlphabet)
    (hy : ∀ c ∈ y, c ∈ inputAlphabet) (hwindow : SameOutside 4 x y) (hne : x ≠ y) :
    ofText? x ≠ ofText? y := by
  have hlt : ∀ {text : List Char}, (∀ c ∈ text, c ∈ inputAlphabet) →
      ∀ p ∈ text.map fun c => inputAlphabet.idxOf c, p < 96 := by
    intro text htext p hp
    obtain ⟨c, hc, rfl⟩ := List.mem_map.mp hp
    exact Nat.lt_trans (List.idxOf_lt_length_of_mem (htext c hc)) (by decide)
  intro h
  rw [ofText?, ofText?, positions?_eq_some hx, positions?_eq_some hy, Option.map_some,
    Option.map_some, Option.some_inj] at h
  have hpositions := eq_of_remainder (hwindow.map _) (hlt hx) (hlt hy)
    (render_injective (remainder_lt (hlt hx)) (remainder_lt (hlt hy)) h)
  refine hne (List.ext_getElem hwindow.1 fun i h₁ h₂ => ?_)
  have hi := congrArg (·[i]?) hpositions
  simp only [List.getElem?_map, List.getElem?_eq_getElem h₁, List.getElem?_eq_getElem h₂,
    Option.map_some, Option.some_inj] at hi
  exact (List.idxOf_inj (hx _ (List.getElem_mem h₁))).mp hi

end Checksum

/-! ### Descriptors with a checksum -/

namespace OutputDescriptor

variable {source sum : String} {d : OutputDescriptor}

theorem ofString_eq_ok_iff_of_bare (h : '#' ∉ source.toList) :
    ofString source = .ok d ↔
      d.source = source ∧ (Parser.runFrom Parser.wholeScript source).1 = .ok d.node := by
  have hsplit : splitChecksum source = (source, none) := by
    rw [splitChecksum, Text.splitLast?_eq_none h]
  rw [ofString_eq_ok_iff, hsplit]
  constructor
  · rintro ⟨_, heq, hnode, -⟩
    obtain ⟨rfl, rfl⟩ := Prod.mk.inj heq
    exact ⟨rfl, hnode⟩
  · rintro ⟨rfl, hnode⟩
    exact ⟨none, rfl, hnode, fun _ hsum => by cases hsum⟩

theorem ofString_append_eq_ok_iff (h : '#' ∉ sum.toList) :
    ofString (source ++ "#" ++ sum) = .ok d ↔
      d.source = source ∧ (Parser.runFrom Parser.wholeScript source).1 = .ok d.node ∧
        Checksum.ofText? source.toList = some sum.toList := by
  have hsplit : splitChecksum (source ++ "#" ++ sum) = (source, some sum.toList) := by
    have htext : (source ++ "#" ++ sum).toList = source.toList ++ '#' :: sum.toList := by
      simp [String.toList_append]
    rw [splitChecksum, htext, Text.splitLast?_append h]
    dsimp only
    rw [String.ofList_toList]
  rw [ofString_eq_ok_iff, hsplit]
  constructor
  · rintro ⟨_, heq, hnode, hsum⟩
    obtain ⟨rfl, rfl⟩ := Prod.mk.inj heq
    exact ⟨rfl, hnode, hsum _ rfl⟩
  · rintro ⟨rfl, hnode, hsum⟩
    refine ⟨some sum.toList, rfl, hnode, ?_⟩
    rintro _ ⟨⟩
    exact hsum

/-- Texts that differ in a window of four characters have different checksums.  So behind a text
only its own checksum is accepted, and the checksum of a text is refused behind every text that
differs from it in such a window. -/
theorem corruption_detected :
    (∀ x y : List Char, (∀ c ∈ x, c ∈ Checksum.inputAlphabet) →
      (∀ c ∈ y, c ∈ Checksum.inputAlphabet) → SameOutside 4 x y → x ≠ y →
      Checksum.ofText? x ≠ Checksum.ofText? y) ∧
    (∀ source sum : String, '#' ∉ source.toList → '#' ∉ sum.toList → ∀ d,
      ofString (source ++ "#" ++ sum) = .ok d ↔
        ofString source = .ok d ∧ Checksum.ofText? source.toList = some sum.toList) ∧
    ∀ (source other sum : String) (d : OutputDescriptor), '#' ∉ sum.toList →
      ofString (source ++ "#" ++ sum) = .ok d → SameOutside 4 source.toList other.toList →
      source ≠ other → ∃ e, ofString (other ++ "#" ++ sum) = .error e := by
  refine ⟨fun x y hx hy hwindow hne => Checksum.ofText?_ne_of_window hx hy hwindow hne, ?_, ?_⟩
  · intro source sum hsource hsum d
    rw [ofString_append_eq_ok_iff hsum, ofString_eq_ok_iff_of_bare hsource, and_assoc]
  · intro source other sum d hsum hread hwindow hne
    obtain ⟨-, -, hchecksum⟩ := (ofString_append_eq_ok_iff hsum).mp hread
    cases hother : ofString (other ++ "#" ++ sum) with
    | error e => exact ⟨e, rfl⟩
    | ok d' =>
        obtain ⟨-, -, hchecksum'⟩ := (ofString_append_eq_ok_iff hsum).mp hother
        have hsource := Checksum.isSome_ofText?_iff.mp (Option.isSome_of_eq_some hchecksum)
        have hother := Checksum.isSome_ofText?_iff.mp (Option.isSome_of_eq_some hchecksum')
        refine absurd (hchecksum.trans hchecksum'.symm) ?_
        exact Checksum.ofText?_ne_of_window hsource hother hwindow (mt String.toList_inj.mp hne)

/-- Two neighbours are swapped. -/
theorem corruption_detected_of_swap :
    Checksum.ofText? "raw(deadbeef)".toList ≠ Checksum.ofText? "raw(daedbeef)".toList ∧
    ∃ d, ofString "raw(deadbeef)" = .ok d ∧
      ofString ("raw(deadbeef)" ++ "#" ++ "89f8spxm") = .ok d ∧
      ∃ e, ofString ("raw(daedbeef)" ++ "#" ++ "89f8spxm") = .error e := by
  obtain ⟨hdiffer, haccept, hrefuse⟩ := corruption_detected
  have hwindow : SameOutside 4 "raw(deadbeef)".toList "raw(daedbeef)".toList :=
    SameOutside.of_append "raw(d".toList "dbeef)".toList (u := ['e', 'a']) (v := ['a', 'e']) rfl
      (by decide)
  obtain ⟨d, hread, -⟩ := exists_of_any_toOption (P := fun _ => True)
    (x := ofString ("raw(deadbeef)" ++ "#" ++ "89f8spxm")) (by decide +kernel)
  have hsource : ∀ c ∈ "raw(deadbeef)".toList, c ∈ Checksum.inputAlphabet :=
    Checksum.isSome_ofText?_iff.mp (by decide +kernel)
  have hother : ∀ c ∈ "raw(daedbeef)".toList, c ∈ Checksum.inputAlphabet :=
    Checksum.isSome_ofText?_iff.mp (by decide +kernel)
  refine ⟨hdiffer _ _ hsource hother hwindow (by decide), d, ?_, hread, ?_⟩
  · exact ((haccept _ _ (by decide) (by decide) d).mp hread).1
  · exact hrefuse _ _ _ d (by decide) hread hwindow (by decide)

end OutputDescriptor

end WalletExchange
